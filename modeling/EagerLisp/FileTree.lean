namespace EagerLisp

/-- Why a path cannot be opened. -/
inductive FileFault where
  | absent
  | denied
  | notDirectory
  | directory
  | nameTooLong
  | other (code : Nat)
deriving DecidableEq

namespace FileFault

def code : FileFault → Nat
  | .absent => 2
  | .denied => 13
  | .notDirectory => 20
  | .directory => 21
  | .nameTooLong => 36
  | .other code => code

def ofCode : Nat → FileFault
  | 2 => .absent
  | 13 => .denied
  | 20 => .notDirectory
  | 21 => .directory
  | 36 => .nameTooLong
  | code => .other code

def kind : FileFault → String
  | .absent => "NotFound"
  | .denied => "PermissionDenied"
  | .notDirectory => "NotADirectory"
  | .directory => "IsADirectory"
  | .nameTooLong => "InvalidFilename"
  | .other _ => "Uncategorized"

def reason : FileFault → String
  | .absent => "No such file or directory"
  | .denied => "Permission denied"
  | .notDirectory => "Not a directory"
  | .directory => "Is a directory"
  | .nameTooLong => "File name too long"
  | .other code => "Unknown error " ++ toString code

def message (fault : FileFault) : String :=
  fault.reason ++ " (os error " ++ toString fault.code ++ ")"

def record (fault : FileFault) : String :=
  "Os \x7b code: " ++ toString fault.code ++ ", kind: " ++ fault.kind ++ ", message: \""
    ++ fault.reason ++ "\" \x7d"

end FileFault

/-- Where something stands in a tree: the names on the way to it from the root. -/
abbrev Place := List String

/-- A tree of files: the texts of the files by their places, directories that are there also
without a file in them, and the directory in which a relative path begins. -/
structure FileTree where
  files : List (Place × String)
  directories : List Place
  working : Place

inductive FileEntry where
  | file (text : String)
  | directory
  | absent
deriving DecidableEq

namespace FileTree

/-- A directory is on the way to a file or to another directory. -/
def hasDirectory (tree : FileTree) (place : Place) : Bool :=
  place.isPrefixOf tree.working || tree.directories.any place.isPrefixOf
    || tree.files.any fun file => place.isPrefixOf file.1

def entryAt (tree : FileTree) (place : Place) : FileEntry :=
  match tree.files.lookup place with
  | some text => .file text
  | none => if tree.hasDirectory place then .directory else .absent

/-- The place that a name leads to: no name and one dot stay, two dots go back, and the root is
behind itself. -/
def step (place : Place) (name : String) : Place :=
  if name = "" || name = "." then place
  else if name = ".." then place.dropLast
  else place ++ [name]

def nameLimit : Nat := 255

/-- The bytes that a path may have at most. -/
def pathLimit : Nat := 4095

def follow (tree : FileTree) (place : Place) : List String → Except FileFault Place
  | [] => .ok place
  | name :: rest =>
    match tree.entryAt place with
    | .absent => .error .absent
    | .file _ => .error .notDirectory
    | .directory =>
      if name.utf8ByteSize > nameLimit then .error .nameTooLong
      else tree.follow (step place name) rest

/-- The names of a path; one before or behind a slash may be empty. -/
def namesOf (path : String) : List String :=
  path.splitOn "/"

def start (tree : FileTree) (path : String) : Place :=
  if path.startsWith "/" then [] else tree.working

def pathFault? (path : String) : Option FileFault :=
  if path.isEmpty then some .absent
  else if path.utf8ByteSize > pathLimit then some .nameTooLong
  else none

def read (tree : FileTree) (path : String) : Except FileFault String :=
  match pathFault? path with
  | some fault => .error fault
  | none => do
    match tree.entryAt (← tree.follow (tree.start path) (namesOf path)) with
    | .file text => return text
    | .directory => .error .directory
    | .absent => .error .absent

/-- Looks for a place to write to: all names but the last lead to a directory, and the last one
leads to a file or to nothing. A slash behind the last name asks for a directory. -/
def target (tree : FileTree) (path : String) : Except FileFault Place :=
  match pathFault? path with
  | some fault => .error fault
  | none => do
    let names := (namesOf path).filter (· ≠ "")
    let parent ← tree.follow (tree.start path) (names.dropLast ++ [""])
    if path.endsWith "/" then .error .directory
    else
      let place ← tree.follow parent names.getLast?.toList
      if tree.entryAt place = .directory then .error .directory else return place

def writeFault? (tree : FileTree) (path : String) : Option FileFault :=
  match tree.target path with
  | .ok _ => none
  | .error fault => some fault

end FileTree

/-- The exit code of a program and what it wrote for output and for errors. -/
structure Outcome where
  code : Nat
  output : String
  errors : String
deriving DecidableEq

end EagerLisp
