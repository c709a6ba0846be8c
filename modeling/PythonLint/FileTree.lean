import PythonLint.FileError
import PythonLint.Path
import PythonLint.Text.Utf8

/-!
# Files and directories

A tree of files and directories, and what a program can ask of it and do to it.

## Design notes

There are no links, and everything may be read and written. A path leads through directories only,
also where it steps upward or ends with a slash.
-/

namespace PythonLint

/-- A file or a directory. -/
inductive FileTree where
  | file (content : List UInt8)
  | directory (entries : List (String × FileTree))

namespace FileTree

def empty : FileTree := directory []

def entry? (name : String) : FileTree → Option FileTree
  | file _ => none
  | directory entries => entries.lookup name

def get? (tree : FileTree) : List String → Option FileTree
  | [] => some tree
  | name :: rest => (tree.entry? name).bind fun inner => inner.get? rest

def replace (name : String) (tree : FileTree) : List (String × FileTree) → List (String × FileTree)
  | [] => [(name, tree)]
  | (other, inner) :: rest =>
    if other = name then (name, tree) :: rest else (other, inner) :: replace name tree rest

/-- The tree with something else at the end of a list of names, the directories on the way
included. -/
def put (content : FileTree) : List String → FileTree → FileTree
  | [], _ => content
  | name :: rest, tree =>
    let entries := match tree with
      | file _ => []
      | directory entries => entries
    directory (replace name (put content rest ((entries.lookup name).getD empty)) entries)

def isDirectory : FileTree → Bool
  | file _ => false
  | directory _ => true

end FileTree

/-- All files, and the directory that relative paths start from. -/
structure World where
  root : FileTree
  /-- The names that lead from the root to the directory that relative paths start from. -/
  working : List String

namespace World

/-! ### Paths -/

/-- Where one more piece of a path leads from a place, which has to be a directory. -/
def step (world : World) (place : List String) (piece : List Char) :
    Except FileError (List String) :=
  match world.root.get? place with
  | none => .error .notFound
  | some (.file _) => .error .notDirectory
  | some (.directory entries) =>
    if piece = [] ∨ piece = ['.'] then .ok place
    else if piece = ['.', '.'] then .ok place.dropLast
    else
      let name := String.ofList piece
      if (entries.lookup name).isSome then .ok (place ++ [name]) else .error .notFound

def startOf (world : World) (path : Path) : List String :=
  if path.isAbsolute then [] else world.working

def place (world : World) (path : Path) : Except FileError (List String) :=
  if path.text.isEmpty then .error .notFound
  else (Path.pieces path.text).foldlM world.step (world.startOf path)

def find (world : World) (path : Path) : Except FileError FileTree := do
  let place ← world.place path
  match world.root.get? place with
  | some tree => return tree
  | none => throw .notFound

def exists? (world : World) (path : Path) : Bool :=
  (world.find path).toBool

def isFile (world : World) (path : Path) : Bool :=
  match world.find path with
  | .ok (.file _) => true
  | _ => false

def isDirectory (world : World) (path : Path) : Bool :=
  match world.find path with
  | .ok (.directory _) => true
  | _ => false

def workingPath (world : World) : Path :=
  ⟨'/' :: ("/".intercalate world.working).toList⟩

/-! ### Reading -/

def readBytes (world : World) (path : Path) : Except FileError (List UInt8) := do
  match ← world.find path with
  | .file content => return content
  | .directory _ => throw .isDirectory

def readText (world : World) (path : Path) : Except FileError (List Char) := do
  match Text.decodeUtf8 (← world.readBytes path) with
  | .ok text => return text
  | .error _ => throw .notText

/-! ### Writing -/

/-- The directory that a path leads into and the last name of the path, which is `none` if the path
has to lead to a directory: it has no name, it ends with a dot or two, or it ends with a slash. -/
def newPlace (world : World) (path : Path) : Except FileError (List String × Option String) := do
  if path.text.isEmpty then throw .notFound
  let pieces := ((Path.pieces path.text).reverse.dropWhile List.isEmpty).reverse
  let place ← pieces.dropLast.foldlM world.step (world.startOf path)
  let place ← world.step place []
  let slash := path.text.getLast? == some '/'
  match pieces.getLast? with
  | none => return (place, none)
  | some last =>
    if slash || last == ['.'] || last == ['.', '.'] then return (place, none)
    else return (place, some (String.ofList last))

/-- The world with one more directory, unless there is one already. -/
def createDirectory (world : World) (path : Path) : Except FileError World :=
  match world.find path with
  | .ok (.directory _) => .ok world
  | .ok (.file _) => .error .alreadyExists
  | .error .notFound => do
    match ← world.newPlace path with
    | (place, some name) =>
      return { world with root := FileTree.put .empty (place ++ [name]) world.root }
    | (_, none) => throw .notFound
  | .error error => .error error

/-- The world with the directories at paths, each above the one before, so that the nearest exists.
Those above are made only when one is missing. -/
def createFrom (world : World) : List Path → Except FileError World
  | [] => .error .notFound
  | path :: above =>
    if path.text.isEmpty then .ok world
    else match world.createDirectory path with
      | .error .notFound => do
        let made ← createFrom world above
        made.createDirectory path
      | result => result

def createDirectories (world : World) (path : Path) : Except FileError World :=
  createFrom world path.ancestors

def filePlace (world : World) (path : Path) : Except FileError (List String) := do
  match ← world.newPlace path with
  | (_, none) => throw .isDirectory
  | (place, some name) =>
    match world.root.get? (place ++ [name]) with
    | some (.directory _) => throw .isDirectory
    | _ => return place ++ [name]

/-- The world with more at the end of a file, which may be new. -/
def append (world : World) (path : Path) (content : List UInt8) : Except FileError World := do
  let place ← world.filePlace path
  let before := match world.root.get? place with
    | some (.file before) => before
    | _ => []
  return { world with root := FileTree.put (.file (before ++ content)) place world.root }

end World

end PythonLint
